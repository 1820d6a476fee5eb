import MigrationStudio.Migration.StatusWrites
import MigrationStudio.Runtime.ServerGate
import MigrationStudio.Runtime.SettledLane

/-!
# The stored status of the account of a running migration

Every run writes BUSY before it waits for the mutation lock and READY after it has left it, and
other runs, the authentication commands and the recovery know nothing of it.  A second job that
waits for the lock while the first one ends runs with READY; a `connect_existing` during a run
leaves CONNECTING and READY; an interrupted run writes READY or ERROR before it leaves the lock;
and `normalize_after_restart` looks at jobs only, so a crash leaves BUSY for ever.

* `Kept`: the account is shown at work, and no waiting write says otherwise; `Marked`: the same
  from a waiting BUSY on.
* `Orderly`: the condition on a step.
* `Shown`: the invariant; `status_shows_work`: what holds in every orderly run.
-/

namespace MigrationStudio
namespace Runtime

open Foundations MigrationStudio.Core Accounts Jobs Telegram Storage Migration

/-! ## The status in the lane -/

/-- The stored status of an account. -/
def statusIn (db : Database) (a : AccountId) : Option AccountState :=
  (db.accounts a).map Account.status

/-- The stored status of the account, if it exists, is BUSY or WAITING_SERVER. -/
def AtWork (a : AccountId) (db : Database) : Prop :=
  ∀ st, statusIn db a = some st → st.working = true

/-- The account is at work, and stays so whatever is committed of the waiting writes. -/
def Kept (a : AccountId) (db : Database) (waiting : List (ℕ × WriteTask)) : Prop :=
  AtWork a db ∧ ∀ p ∈ waiting, p.2.write.ShowsWork a

/-- The task `i`, a BUSY of the account, waits, or it has raised or shows the account at work; and
no write that waits behind it says otherwise. -/
structure Marked (a : AccountId) (i : ℕ) (t : WriteTask) (db : Database)
    (waiting : List (ℕ × WriteTask)) : Prop where
  sorted : waiting.Pairwise fun p q => p.1 < q.1
  behind : ∀ p ∈ waiting, i < p.1 → p.2.write.ShowsWork a
  state : (i, t) ∈ waiting ∨ ((t.fails ≠ none ∨ AtWork a db) ∧ ∀ p ∈ waiting, i < p.1)

variable {a : AccountId} {db : Database} {w w' : Lane} {wl : WriterLabel WriteTask}

theorem accounts_applyJob (db : Database) (id : JobId) (jw : JobWrite) :
    (db.applyJob id jw).accounts = db.accounts := by
  rw [Database.applyJob]
  split <;> rfl

/-- A write sets the status that it says, and no other. -/
theorem statusIn_apply (db : Database) (v : LaneWrite) (a : AccountId) :
    statusIn (db.apply v) a =
      match v.statusOf a with
      | some st => (statusIn db a).map fun _ => st
      | none => statusIn db a := by
  have hset : ∀ (b : AccountId) (f : Account → Account) (st : AccountState),
      (∀ account, (f account).status = st) →
      (Function.update db.accounts b ((db.accounts b).map f) a).map Account.status =
        match (if b = a then some st else none : Option AccountState) with
        | some st => (statusIn db a).map fun _ => st
        | none => statusIn db a := by
    intro b f st hst
    by_cases hb : b = a
    · subst hb
      rw [Function.update_self, if_pos rfl, Option.map_map]
      show _ = ((db.accounts b).map Account.status).map fun _ => st
      rw [Option.map_map]
      exact congrArg (Option.map · _) (funext hst)
    · rw [Function.update_of_ne fun h => hb h.symm, if_neg hb]
      rfl
  cases v with
  | job id jw =>
      show ((db.applyJob id jw).accounts a).map _ = _
      rw [accounts_applyJob]
      rfl
  | account b st error => exact hset b _ st fun _ => rfl
  | enable b enabled => exact hset b _ _ fun _ => rfl
  | identity b => exact hset b _ .ready fun _ => rfl
  | restriction r => rfl
  | peers pw => rfl
  | other => rfl

theorem atWork_apply (h : AtWork a db) {v : LaneWrite} (hv : v.ShowsWork a) :
    AtWork a (db.apply v) := by
  intro st hst
  rw [statusIn_apply] at hst
  cases hv' : v.statusOf a with
  | none =>
      rw [hv'] at hst
      exact h st hst
  | some st' =>
      rw [hv'] at hst
      obtain ⟨-, -, rfl⟩ := Option.map_eq_some_iff.mp hst
      exact hv st' hv'

theorem atWork_of_busy (error : Option String) : AtWork a (db.apply (.account a .busy error)) := by
  intro st hst
  rw [statusIn_apply] at hst
  simp only [LaneWrite.statusOf, if_true] at hst
  obtain ⟨-, -, rfl⟩ := Option.map_eq_some_iff.mp hst
  rfl

theorem Kept.step (h : Kept a w.database w.waiting) (hl : ∀ t, wl ≠ .submit t)
    (hstep : w.step lane wl = some w') : Kept a w'.database w'.waiting := by
  refine DBWriter.step_rule (I := Kept a) ?_ hl hstep ?_ h
  · rintro db p rest db' r hop ⟨hdb, hall⟩
    obtain ⟨-, rfl⟩ := operation_eq_ok hop
    exact ⟨atWork_apply hdb (hall p (List.mem_cons_self ..)),
      fun q hq => hall q (List.mem_cons_of_mem _ hq)⟩
  · rintro b - rest db db' e - ⟨hdb, hall⟩
    exact ⟨hdb, fun q hq => hall q (List.mem_append_right _ hq)⟩

/-- A critical task is a batch of its own. -/
theorem batch_of_critical (hnum : Numbered lane w) {b : List (ℕ × WriteTask)}
    (hb : b ∈ w.batches lane wl) {p : ℕ × WriteTask} (hp : p ∈ b)
    (hcritical : p.2.critical = true) : b = [p] := by
  obtain ⟨db₀, bs, hbs⟩ := hnum
  have hroutine : p ∉ w.pending := fun hmem =>
    absurd (hcritical.symm.trans (hbs.routine p hmem)) (by simp)
  cases wl with
  | submit t => exact absurd hb (by simp [DBWriter.batches])
  | timeout =>
      rw [List.mem_singleton.mp hb] at hp
      exact absurd hp hroutine
  | get =>
      rw [DBWriter.batches] at hb
      split at hb
      · exact absurd hb (by simp)
      · rename_i item rest hqueue
        split_ifs at hb with hitem hfull
        · rcases List.mem_cons.mp hb with rfl | hb
          · exact absurd hp hroutine
          · rw [List.mem_singleton.mp hb] at hp ⊢
            rw [List.mem_singleton.mp hp]
        · rw [List.mem_singleton.mp hb] at hp
          rcases List.mem_append.mp hp with hp | hp
          · exact absurd hp hroutine
          · rw [List.mem_singleton.mp hp] at hcritical
            exact absurd hcritical hitem
        · exact absurd hb (by simp)

theorem Marked.step (hnum : Numbered lane w) {i : ℕ} {t : WriteTask}
    (hcritical : t.critical = true) {error : Option String}
    (hwrite : t.write = .account a .busy error) (h : Marked a i t w.database w.waiting)
    (hl : ∀ t, wl ≠ .submit t) (hstep : w.step lane wl = some w') :
    Marked a i t w'.database w'.waiting := by
  refine DBWriter.step_rule (I := Marked a i t) ?_ hl hstep ?_ h
  · rintro db p rest db' r hop ⟨hsorted, hbehind, hstate⟩
    obtain ⟨-, rfl⟩ := operation_eq_ok hop
    obtain ⟨hfirst, hrest⟩ := List.pairwise_cons.mp hsorted
    refine ⟨hrest, fun q hq => hbehind q (List.mem_cons_of_mem _ hq), ?_⟩
    rcases hstate with hmem | ⟨hstate, hall⟩
    · rcases List.mem_cons.mp hmem with rfl | hmem
      · refine Or.inr ⟨Or.inr ?_, hfirst⟩
        rw [hwrite]
        exact atWork_of_busy error
      · exact Or.inl hmem
    · have hshows : p.2.write.ShowsWork a :=
        hbehind p (List.mem_cons_self ..) (hall p (List.mem_cons_self ..))
      exact Or.inr ⟨hstate.imp_right fun hdb => atWork_apply hdb hshows,
        fun q hq => hall q (List.mem_cons_of_mem _ hq)⟩
  · rintro b hb rest db db' e hfail ⟨hsorted, hbehind, hstate⟩
    obtain ⟨-, hrest, hcross⟩ := List.pairwise_append.mp hsorted
    refine ⟨hrest, fun q hq => hbehind q (List.mem_append_right _ hq), ?_⟩
    rcases hstate with hmem | ⟨hstate, hall⟩
    · rcases List.mem_append.mp hmem with hmem | hmem
      · -- BUSY itself is rolled back, so it raises
        obtain rfl := batch_of_critical hnum hb hmem hcritical
        obtain ⟨u, hu, hraise⟩ := fails_of_transaction hfail
        rw [List.map_singleton, List.mem_singleton] at hu
        rw [hu] at hraise
        exact Or.inr ⟨Or.inl hraise, fun q hq => hcross _ hmem q hq⟩
      · exact Or.inl hmem
    · exact Or.inr ⟨hstate, fun q hq => hall q (List.mem_append_right _ hq)⟩

theorem operation_of_transaction {τ σ ε ρ : Type*} {op : τ → σ → σ × Except ε ρ} {ts : List τ}
    {s s' : σ} {rs : List ρ} (h : transaction op ts s = (s', .ok rs)) :
    ∀ t ∈ ts, ∃ u u' r, op t u = (u', .ok r) := by
  induction ts generalizing s rs with
  | nil => simp
  | cons t ts ih =>
      obtain ⟨u, r, rs', ht, hts, -⟩ := transaction_cons_eq_ok.mp h
      intro x hx
      rcases List.mem_cons.mp hx with rfl | hx
      · exact ⟨s, u, r, ht⟩
      · exact ih hts x hx

/-- A future that holds a result belongs to a task that does not raise. -/
theorem Numbered.fails_of_ok (hnum : Numbered lane w) {i : ℕ} (h : w.future i = some (.ok ()))
    {t : WriteTask} (ht : w.submitted[i]? = some t) : t.fails = none := by
  obtain ⟨db₀, bs, hbs⟩ := hnum
  have hmem : t ∈ w.succeeded.map Prod.fst := by
    refine List.mem_map.mpr ⟨(t, ()), ?_, rfl⟩
    rw [DBWriter.succeeded, List.mem_filterMap]
    exact ⟨(t, i), List.mem_zipIdx_iff_getElem?.mpr ht, by rw [h]⟩
  obtain ⟨u, u', r, hop⟩ := operation_of_transaction hbs.transaction_succeeded t hmem
  exact (operation_eq_ok hop).1

/-- The future of BUSY is resolved with a result. -/
theorem Marked.kept (hnum : Numbered lane w) {i : ℕ} {t : WriteTask}
    (ht : w.submitted[i]? = some t) (h : Marked a i t w.database w.waiting)
    (hok : w.future i = some (.ok ())) : Kept a w.database w.waiting := by
  have hafter : ∀ p ∈ w.waiting, i < p.1 := fun p hp => (hnum.lt_of_waiting hp).2 i _ hok
  refine ⟨?_, fun p hp => h.behind p hp (hafter p hp)⟩
  rcases h.state with hmem | ⟨hraised | hdb, -⟩
  · exact absurd (hafter _ hmem) (lt_irrefl i)
  · exact absurd (hnum.fails_of_ok hok ht) hraised
  · exact hdb

namespace App

/-! ## Orderly runs -/

/-- **The step is orderly.**  Nothing interrupts the executor that moves; it submits BUSY when every
other executor of its account has not submitted BUSY or has done its last statement; another
component sets a status only while no executor of the account is in its run; and no account is BUSY
at a crash. -/
structure Orderly (s : App) (l : Label) : Prop where
  move : ∀ job e m fails, jobOf l = some job → s.executors job = some e →
    s.moveOf e l = some (m, fails) → e.Uninterrupted s.now m ∧
      (e.SubmitsBusy m → ∀ k f, k ≠ job → s.executors k = some f → f.accountId = e.accountId →
        f.Fresh ∨ f.Over)
  foreign : ∀ w critical fails, l = .foreign w critical fails → ∀ a st, w.statusOf a = some st →
    st.working = false → ∀ j e, s.executors j = some e → e.accountId = a → ¬ e.InRun
  crash : l = .crash → ∀ a, statusIn s.db a ≠ some .busy

/-- What the lane shows of the status while an executor is in its run: it is kept, or from the BUSY
on that the executor awaits. -/
def ShownFor (w : Lane) (e : Executor) : Prop :=
  match e.marking with
  | none => Kept e.accountId w.database w.waiting
  | some i => ∃ t, w.submitted[i]? = some t ∧ t.critical = true ∧
      t.write = .account e.accountId .busy none ∧ Marked e.accountId i t w.database w.waiting

/-- **The invariant.**  At most one executor of an account has submitted BUSY and not done its last
statement, and while it is in its run the account is shown at work. -/
structure Shown (s : App) : Prop where
  sound : s.Sound
  recovered : s.recovering ≠ [] → ∀ j, s.executors j = none
  idle : s.recovering ≠ [] → ∀ a, statusIn s.db a ≠ some .busy
  tame : ∀ j e, s.executors j = some e → e.Tame
  alone : ∀ j k e f, s.executors j = some e → s.executors k = some f →
    e.accountId = f.accountId → e.Active → f.Active → j = k
  shown : ∀ j e, s.executors j = some e → e.InRun → ShownFor s.writer e

variable {s s' : App} {l : Label} {e : Executor} {w w' : Lane} {wl : WriterLabel WriteTask}

theorem shown_start (db : Database) (now : ℕ) : (App.start db now).Shown where
  sound := sound_start db now
  recovered := fun h => absurd rfl h
  idle := fun h => absurd rfl h
  tame := fun j e he => absurd he (by simp [App.start])
  alone := fun j k e f he => absurd he (by simp [App.start])
  shown := fun j e he => absurd he (by simp [App.start])

theorem shownFor_none (h : e.marking = none) :
    ShownFor w e ↔ Kept e.accountId w.database w.waiting := by
  rw [ShownFor, h]

theorem shownFor_some {i : ℕ} (h : e.marking = some i) :
    ShownFor w e ↔ ∃ t, w.submitted[i]? = some t ∧ t.critical = true ∧
      t.write = .account e.accountId .busy none ∧
      Marked e.accountId i t w.database w.waiting := by
  rw [ShownFor, h]

theorem ShownFor.of_same (h : ShownFor w e) {e' : Executor} (hacc : e'.accountId = e.accountId)
    (hmarking : e'.marking = e.marking) : ShownFor w e' := by
  rwa [ShownFor, hmarking, hacc]

/-- A task joins the queue with the next number. -/
theorem sorted_submit (hnum : Numbered lane w) (h : w.waiting.Pairwise fun p q => p.1 < q.1)
    (t : WriteTask) : (w.submit t).waiting.Pairwise fun p q => p.1 < q.1 := by
  rw [waiting_submit, List.pairwise_append]
  refine ⟨h, List.pairwise_singleton _ _, fun p hp q hq => ?_⟩
  rw [List.mem_singleton.mp hq]
  exact (hnum.lt_of_waiting hp).1

/-- The waiting tasks are in the order of submission. -/
theorem sorted_waiting (hnum : Numbered lane w) : w.waiting.Pairwise fun p q => p.1 < q.1 := by
  obtain ⟨db₀, bs, hbs⟩ := hnum
  rw [← List.pairwise_map (f := Prod.fst) (R := (· < ·)), hbs.ids]
  exact List.pairwise_lt_range'

/-- A write is submitted that does not say otherwise. -/
theorem ShownFor.submit (h : ShownFor w e) {t : WriteTask} (ht : t.write.ShowsWork e.accountId)
    (hnum : Numbered lane w) : ShownFor (w.submit t) e := by
  cases hmarking : e.marking with
  | none =>
      obtain ⟨hdb, hall⟩ := (shownFor_none hmarking).mp h
      refine (shownFor_none hmarking).mpr ⟨hdb, fun p hp => ?_⟩
      rw [waiting_submit] at hp
      rcases List.mem_append.mp hp with hp | hp
      · exact hall p hp
      · rw [List.mem_singleton.mp hp]
        exact ht
  | some i =>
      obtain ⟨u, hu, hcritical, hwrite, hmarked⟩ := (shownFor_some hmarking).mp h
      obtain ⟨hi, -⟩ := List.getElem?_eq_some_iff.mp hu
      refine (shownFor_some hmarking).mpr ⟨u, ?_, hcritical, hwrite, ?_, ?_, ?_⟩
      · exact (List.getElem?_append_left hi).trans hu
      · exact sorted_submit hnum hmarked.sorted t
      · intro p hp hlt
        rw [waiting_submit] at hp
        rcases List.mem_append.mp hp with hp | hp
        · exact hmarked.behind p hp hlt
        · rw [List.mem_singleton.mp hp]
          exact ht
      · rw [waiting_submit]
        refine hmarked.state.imp (List.mem_append_left _) fun hstate => ⟨hstate.1, fun p hp => ?_⟩
        rcases List.mem_append.mp hp with hp | hp
        · exact hstate.2 p hp
        · rw [List.mem_singleton.mp hp]
          exact hi

/-- The writer thread moves. -/
theorem ShownFor.lane (h : ShownFor w e) (hnum : Numbered lane w) (hl : ∀ t, wl ≠ .submit t)
    (hw : w.step lane wl = some w') : ShownFor w' e := by
  cases hmarking : e.marking with
  | none =>
      exact (shownFor_none hmarking).mpr (((shownFor_none hmarking).mp h).step hl hw)
  | some i =>
      obtain ⟨u, hu, hcritical, hwrite, hmarked⟩ := (shownFor_some hmarking).mp h
      refine (shownFor_some hmarking).mpr ⟨u, ?_, hcritical, hwrite,
        hmarked.step hnum hcritical hwrite hl hw⟩
      rw [DBWriter.submitted_step hl hw]
      exact hu

/-- The executor submits BUSY. -/
theorem shownFor_of_marks {t : WriteTask} (hnum : Numbered lane w)
    (hmarking : e.marking = some w.submitted.length) (hcritical : t.critical = true)
    (hwrite : t.write = .account e.accountId .busy none) : ShownFor (w.submit t) e := by
  refine (shownFor_some hmarking).mpr ⟨t, List.getElem?_concat_length, hcritical, hwrite,
    sorted_waiting (hnum.submit t), fun p hp hlt => ?_, Or.inl ?_⟩
  · rw [waiting_submit] at hp
    rcases List.mem_append.mp hp with hp | hp
    · exact absurd ((hnum.lt_of_waiting hp).1) (not_lt.mpr hlt.le)
    · rw [List.mem_singleton.mp hp] at hlt
      exact absurd hlt (lt_irrefl _)
  · rw [waiting_submit]
    exact List.mem_append_right _ (List.mem_singleton_self _)

/-! ## One step of an executor -/

section Move

variable {job : JobId} {m : Move} {out : Outcome} {fails : Option String}

theorem writer_applyOutcome (s : App) (job : JobId) (e : Executor) (out : Outcome)
    (fails : Option String) :
    (∃ v, out.write = some v ∧
      (s.applyOutcome job e out fails).writer = s.writer.submit (taskOf v fails)) ∨
    (out.write = none ∧ (s.applyOutcome job e out fails).writer = s.writer) := by
  rw [applyOutcome]
  cases out.write with
  | none => exact Or.inr ⟨rfl, rfl⟩
  | some v => exact Or.inl ⟨v, rfl, rfl⟩

/-- An executor in its run keeps its mark when an executor moves that writes nothing against it. -/
theorem ShownFor.move {f : Executor} (h : ShownFor s.writer f) (hs : s.Sound)
    (hwrite : ∀ v, out.write = some v → v.ShowsWork f.accountId) :
    ShownFor (s.applyOutcome job e out fails).writer f := by
  rcases writer_applyOutcome s job e out fails with ⟨v, hv, hw⟩ | ⟨-, hw⟩
  · rw [hw]
    exact h.submit (hwrite v hv) hs.numbered
  · rw [hw]
    exact h

/-- What an executor writes says nothing against an executor in its run. -/
theorem Shown.showsWork (hs : s.Shown) {k : JobId} {f : Executor} (he : s.executors job = some e)
    (hf : s.executors k = some f) (hrun : f.InRun)
    (hcond : e.Uninterrupted s.now m) (hout : e.step (s.env e.accountId) m = some out)
    {v : LaneWrite} (hv : out.write = some v) : v.ShowsWork f.accountId := by
  intro st hst
  obtain ⟨hacc, hworking | ⟨hactive, hidle⟩⟩ :=
    Executor.status_of_write hout (hs.tame job e he) hcond hv hst
  · exact hworking
  · obtain rfl := hs.alone k job f e hf he hacc hrun.active hactive
    obtain rfl := Option.some.inj (he.symm.trans hf)
    exact absurd hrun hidle

theorem Shown.executor (hs : s.Shown) (hrec : s.recovering = []) (hjob : jobOf l = some job)
    (he : s.executors job = some e) (hm : s.moveOf e l = some (m, fails))
    (hout : e.step (s.env e.accountId) m = some out) (hcond : s.Orderly l) :
    (s.applyOutcome job e out fails).Shown := by
  have ht := Executor.transition_of_step hout
  have htame := hs.tame job e he
  obtain ⟨hquiet, hmarks⟩ := hcond.move job e m fails hjob he hm
  refine ⟨hs.sound.applyOutcome he ht, fun h => absurd hrec h, fun h => absurd hrec h,
    update_executor hs.tame (ht.tame htame hquiet), ?_, ?_⟩
  · -- the executor that moves is active already, or no other one of its account is
    have hnew : ∀ e' k f, out.executor = some e' → k ≠ job → s.executors k = some f →
        e'.accountId = f.accountId → e'.Active → ¬ f.Active := by
      intro e' k f he' hk hf hacc hactive hother
      rw [(ht.same he').accountId] at hacc
      rcases ht.active htame e' he' hactive with hold | hmark
      · exact hk (hs.alone k job f e hf he hacc.symm hother hold)
      · rcases hmarks hmark k f hk hf hacc.symm with hfresh | hover
        · exact hother.1 hfresh
        · exact hother.2 hover
    intro j k f g hf hg hacc hfa hga
    by_contra hne
    by_cases hj : j = job
    · subst hj
      rw [executors_applyOutcome_self] at hf
      rw [executors_applyOutcome_of_ne fun h => hne h.symm] at hg
      exact hnew f k g hf (fun h => hne h.symm) hg hacc hfa hga
    · rw [executors_applyOutcome_of_ne hj] at hf
      by_cases hk : k = job
      · subst hk
        rw [executors_applyOutcome_self] at hg
        exact hnew g j f hg hj hf hacc.symm hga hfa
      · rw [executors_applyOutcome_of_ne hk] at hg
        exact hne (hs.alone j k f g hf hg hacc hfa hga)
  · intro j f hf hrun
    by_cases hj : j = job
    · subst hj
      rw [executors_applyOutcome_self] at hf
      have hacc := (ht.same hf).accountId
      rcases ht.inRun htame f hf hrun with ⟨-, hbusy, hmarking⟩ | ⟨hold, hmarking⟩
      · rcases writer_applyOutcome s j e out fails with ⟨v, hv, hw⟩ | ⟨hnone, -⟩
        · obtain rfl := Option.some.inj (hv.symm.trans hbusy)
          rw [hw]
          exact shownFor_of_marks hs.sound.numbered hmarking rfl (by rw [hacc]; rfl)
        · exact absurd (hnone.symm.trans hbusy) (by simp)
      · have hshown : ShownFor (s.applyOutcome j e out fails).writer e :=
          (hs.shown j e he hold).move hs.sound fun v hv => hs.showsWork he he hold hquiet hout hv
        rcases hmarking with hsame | ⟨rfl, hnone, a, haw, hmark⟩
        · exact hshown.of_same hacc hsame
        · -- the future of BUSY is resolved
          obtain ⟨b, hb, hfuture⟩ := future_of_resumed hm
          obtain rfl := Option.some.inj (haw.symm.trans hb)
          obtain ⟨t, htask, -, -, hmarked⟩ := (shownFor_some hmark).mp (hs.shown j e he hold)
          have hkept := hmarked.kept hs.sound.numbered htask hfuture
          rcases writer_applyOutcome s j e out fails with ⟨v, hv, -⟩ | ⟨-, hw⟩
          · cases ht with
            | resumed haw lastFlush => exact absurd hv (by simp)
          · rw [hw, shownFor_none hnone, hacc]
            exact hkept
    · rw [executors_applyOutcome_of_ne hj] at hf
      exact (hs.shown j f hf hrun).move hs.sound
        fun v hv => hs.showsWork he hf hrun hquiet hout hv

end Move

/-! ## One step of the program -/

theorem accounts_normalizeJob (now : ℕ) (id : JobId) (db : Database) :
    (normalizeJob now id db).accounts = db.accounts := by
  rw [normalizeJob]
  split
  · rfl
  · split_ifs
    · rfl
    · exact accounts_applyJob db id _
    · rfl

theorem statusIn_normalizeJob (now : ℕ) (id : JobId) (db : Database) (a : AccountId) :
    statusIn (normalizeJob now id db) a = statusIn db a := by
  rw [statusIn, accounts_normalizeJob, statusIn]

/-- **One step** of an orderly run. -/
theorem Shown.step (hs : s.Shown) (hcond : s.Orderly l) (h : s.Step l s') : s'.Shown := by
  have hsound := hs.sound.step h
  cases h with
  | tick d => exact ⟨hsound, hs.recovered, hs.idle, hs.tame, hs.alone, hs.shown⟩
  | crash =>
      exact ⟨hsound, fun _ _ => rfl, fun _ => hcond.crash rfl, fun j e he => absurd he (by simp),
        fun j k e f he => absurd he (by simp), fun j e he => absurd he (by simp)⟩
  | @normalize id rest hrec =>
      have hnone : ∀ j, s.executors j = none := hs.recovered (by simp [hrec])
      refine ⟨hsound, fun _ => hnone, fun _ a => ?_, fun j e he => ?_, fun j k e f he => ?_,
        fun j e he => ?_⟩
      · rw [show App.db _ = normalizeJob s.recoveryNow id s.db from rfl, statusIn_normalizeJob]
        exact hs.idle (by simp [hrec]) a
      all_goals exact absurd ((hnone j).symm.trans he) (by simp)
  | refused l => exact hs
  | @built _ id row account target scheduler hl hadm =>
      have hfresh : (s.newExecutor id account target scheduler).Fresh := Or.inl rfl
      refine ⟨hsound, fun h => absurd hadm.recovering h, fun h => absurd hadm.recovering h,
        update_executor hs.tame ?_, ?_, update_executor hs.shown ?_⟩
      · intro e he
        obtain rfl := Option.some.inj he
        exact ⟨fun _ => ⟨rfl, rfl⟩, fun h => absurd h (by simp [newExecutor]),
          fun h => absurd h (by simp [newExecutor]),
          fun st hst => absurd hst (by simp [newExecutor]),
          fun _ st hst => absurd hst (by simp [newExecutor])⟩
      · have hold : ∀ j e,
            (s.withExecutor id (s.newExecutor id account target scheduler)).executors j = some e →
              e.Active → s.executors j = some e :=
          update_executor (P := fun j e => e.Active → s.executors j = some e) (fun _ _ he _ => he)
            fun e he hactive => absurd (Option.some.inj he ▸ hfresh) hactive.1
        exact fun j k e f he hf hacc hea hfa =>
          hs.alone j k e f (hold j e he hea) (hold k f hf hfa) hacc hea hfa
      · intro e he hrun
        obtain rfl := Option.some.inj he
        exact absurd hfresh hrun.active.1
  | @foreign w critical fails hown =>
      refine ⟨hsound, hs.recovered, hs.idle, hs.tame, hs.alone, fun j e he hrun => ?_⟩
      refine (hs.shown j e he hrun).submit (fun st hst => ?_) hs.sound.numbered
      by_contra hidle
      exact hcond.foreign w critical fails rfl e.accountId st hst (by simpa using hidle) j e he rfl
        hrun
  | lane hrec hl hw =>
      exact ⟨hsound, hs.recovered, fun h => absurd hrec h, hs.tame, hs.alone,
        fun j e he hrun => (hs.shown j e he hrun).lane hs.sound.numbered
          (laneLabel_ne_submit hl) hw⟩
  | executor hrec hjob he hm hout => exact hs.executor hrec hjob he hm hout hcond

/-- An executor in its candidate loop shows its account at work. -/
theorem Shown.atWork (hs : s.Shown) {j : JobId} (he : s.executors j = some e)
    (hlock : e.holdsLock = true) : AtWork e.accountId s.db :=
  ((shownFor_none (Executor.marking_of_lock hlock)).mp
    (hs.shown j e he (Or.inr (Or.inr hlock)))).1

/-- **The status shows the work** in every orderly run: while an executor holds the mutation lock of
its account, the account's status is BUSY or WAITING_SERVER; and when the recovery after a crash is
over, no account is BUSY. -/
theorem status_shows_work (db : Database) (now : ℕ) {ls : List Label}
    (hrun : runLabels App.step (App.start db now) ls = some s)
    (horderly : Along App.step Orderly (App.start db now) ls) :
    (∀ j e, s.executors j = some e → e.holdsLock = true → ∀ account,
      s.db.accounts e.accountId = some account →
        account.status = .busy ∨ account.status = .waitingServer) ∧
      ∀ l s', (l = .crash ∨ l = .normalize) → s.Orderly l → s.step l = some s' →
        s'.recovering = [] → ∀ a account, s'.db.accounts a = some account →
          account.status ≠ .busy := by
  have hinv : s.Shown :=
    invariant_runLabels (fun _ _ _ hI hC hstep => hI.step hC (step_cases hstep))
      (shown_start db now) horderly hrun
  refine ⟨fun j e he hlock account haccount => ?_, ?_⟩
  · exact AccountState.working_iff.mp
      (hinv.atWork he hlock _ (congrArg (Option.map Account.status) haccount))
  · rintro l s' hl horderly hstep - a account haccount hbusy
    have hstatus : statusIn s'.db a = some .busy :=
      (congrArg (Option.map Account.status) haccount).trans (congrArg some hbusy)
    rcases hl with rfl | rfl
    · obtain rfl := Option.some.inj hstep
      exact horderly.crash rfl a hstatus
    · rw [App.step] at hstep
      split at hstep
      · exact absurd hstep (by simp)
      · rename_i id rest hrec
        obtain rfl := Option.some.inj hstep
        refine hinv.idle (by simp [hrec]) a ?_
        rw [← statusIn_normalizeJob s.recoveryNow id s.db a]
        exact hstatus

/-! ## One job at a time -/

/-- The label is neither a write of another component nor a crash. -/
def ownLabel : Label → Bool
  | .foreign _ _ _ | .crash => false
  | _ => true

/-- In a program that runs the job `id` only: nothing interrupts its executor, no other component
writes, and nothing crashes. -/
def Calm (id : JobId) (s : App) (l : Label) : Prop :=
  startsOnly id l = true ∧ ownLabel l = true ∧
    ∀ e ∈ s.executors id, ∀ p ∈ s.moveOf e l, e.Uninterrupted s.now p.1

instance (id : JobId) (s : App) (l : Label) : Decidable (Calm id s l) :=
  inferInstanceAs (Decidable (startsOnly id l = true ∧ ownLabel l = true ∧
    ∀ e ∈ s.executors id, ∀ p ∈ s.moveOf e l, e.Uninterrupted s.now p.1))

theorem orderly_of_alone {id : JobId} (hs : Alone id s) (h : Calm id s l) : s.Orderly l where
  move := by
    intro job e m fails _ he hm
    obtain rfl : job = id := by
      by_contra hne
      exact absurd ((hs.executors job hne).symm.trans he) (by simp)
    refine ⟨h.2.2 e he (m, fails) hm, fun _ k f hk hf => ?_⟩
    exact absurd ((hs.executors k hk).symm.trans hf) (by simp)
  foreign := by
    rintro w critical fails rfl
    exact absurd h.2.1 (by simp [ownLabel])
  crash := by
    rintro rfl
    exact absurd h.2.1 (by simp [ownLabel])

theorem along_orderly {id : JobId} (hs : Alone id s) {ls : List Label}
    (h : Along App.step (Calm id) s ls) : Along App.step Orderly s ls := by
  induction ls generalizing s with
  | nil => trivial
  | cons l ls ih =>
      exact ⟨orderly_of_alone hs h.1, fun s' hs' =>
        ih (hs.step h.1.1 (step_cases hs')) (h.2 s' hs')⟩

/-- `run` up to the door of the mutation lock. -/
def toDoor (job : JobId) : List Label :=
  [.start job 1 (3 * second), .advance job] ++ criticalWrite job ++ criticalWrite job ++
    [.advance job, .read job, .advance job, .advance job]

/-- A job is in its candidate loop, and its account is BUSY. -/
theorem status_shows_work_loop :
    ∃ s e account, runLabels App.step (App.start (smallDatabase [persist 1 1 [1] .invite]) 0)
        (toDoor 0 ++ [.advance 0]) = some s ∧
      s.executors 0 = some e ∧ e.holdsLock = true ∧
      s.db.accounts e.accountId = some account ∧
      (account.status = .busy ∨ account.status = .waitingServer) := by
  have h : ((runLabels App.step (App.start (smallDatabase [persist 1 1 [1] .invite]) 0)
      (toDoor 0 ++ [.advance 0])).bind fun s => (s.executors 0).bind fun e =>
        (s.db.accounts e.accountId).map fun _ => e.holdsLock) = some true := by
    decide +kernel
  have hcalm : Along App.step (Calm 0) (App.start (smallDatabase [persist 1 1 [1] .invite]) 0)
      (toDoor 0 ++ [.advance 0]) := by
    decide +kernel
  obtain ⟨s, hs, h⟩ := Option.bind_eq_some_iff.mp h
  obtain ⟨e, he, h⟩ := Option.bind_eq_some_iff.mp h
  obtain ⟨account, haccount, hlock⟩ := Option.map_eq_some_iff.mp h
  have halone : Alone 0 (App.start (smallDatabase [persist 1 1 [1] .invite]) 0) :=
    ⟨fun _ _ => rfl, fun _ _ h => absurd h (by simp [App.start])⟩
  exact ⟨s, e, account, hs, he, hlock, haccount,
    (status_shows_work _ 0 hs (along_orderly halone hcalm)).1 0 e he hlock account haccount⟩

/-! ## Two jobs of one account, and a crash -/

/-- The second job waits for the lock while the first one runs; it enters its loop before the first
one writes READY. -/
def overlapping : List Label :=
  toDoor 0 ++ [.advance 0] ++ toDoor 1 ++ sendRpc 0 ++ keepResult 0 ++
    [.advance 0, .read 0, .advance 0, .advance 0, .advance 1] ++ resultWrite 0 ++ [.advance 0] ++
    criticalWrite 0 ++ criticalWrite 0

/-- The second job is in its candidate loop and the account is READY; and after a crash in the loop
of a job and the recovery, the account is BUSY and nothing runs. -/
theorem status_hides_work :
    (∃ s e account, runLabels App.step
        (App.start (smallDatabase [persist 1 1 [1] .invite, persist 1 1 [2] .invite]) 0)
        overlapping = some s ∧
      s.executors 1 = some e ∧ e.holdsLock = true ∧
      s.db.accounts e.accountId = some account ∧ account.status = .ready) ∧
    ∃ s account, runLabels App.step (App.start (smallDatabase [persist 1 1 [1] .invite]) 0)
        (toDoor 0 ++ [.advance 0] ++ [.crash, .normalize]) = some s ∧
      s.recovering = [] ∧ (∀ j, s.executors j = none) ∧
      s.db.accounts 1 = some account ∧ account.status = .busy := by
  constructor
  · have h : ((runLabels App.step
        (App.start (smallDatabase [persist 1 1 [1] .invite, persist 1 1 [2] .invite]) 0)
        overlapping).bind fun s => (s.executors 1).bind fun e =>
          (s.db.accounts e.accountId).map fun account => (e.holdsLock, account.status)) =
        some (true, .ready) := by
      decide +kernel
    obtain ⟨s, hs, h⟩ := Option.bind_eq_some_iff.mp h
    obtain ⟨e, he, h⟩ := Option.bind_eq_some_iff.mp h
    obtain ⟨account, haccount, heq⟩ := Option.map_eq_some_iff.mp h
    exact ⟨s, e, account, hs, he, congrArg Prod.fst heq, haccount, congrArg Prod.snd heq⟩
  · have h : ((runLabels App.step (App.start (smallDatabase [persist 1 1 [1] .invite]) 0)
        (toDoor 0 ++ [.advance 0] ++ [.crash, .normalize])).bind fun s =>
          (s.db.accounts 1).map fun account => (s.recovering, account.status)) =
        some ([], .busy) := by
      decide +kernel
    obtain ⟨s, hs, h⟩ := Option.bind_eq_some_iff.mp h
    obtain ⟨account, haccount, heq⟩ := Option.map_eq_some_iff.mp h
    refine ⟨s, account, hs, congrArg Prod.fst heq, fun j => ?_, haccount, congrArg Prod.snd heq⟩
    obtain ⟨t, -, hrest⟩ := runLabels_append_eq_some.mp hs
    obtain ⟨t₁, hcrash, hrest⟩ := runLabels_cons_eq_some.mp hrest
    obtain ⟨t₂, hnormalize, hnil⟩ := runLabels_cons_eq_some.mp hrest
    obtain rfl := Option.some.inj hcrash
    obtain rfl := Option.some.inj hnil
    rw [App.step] at hnormalize
    split at hnormalize
    · exact absurd hnormalize (by simp)
    · obtain rfl := Option.some.inj hnormalize
      rfl

end App
end Runtime
end MigrationStudio
